import Persistent.Proofs.Seq.Chain
import Persistent.Proofs.Seq.Task

/-!
What a sequence shows at each position: the items in front, and from a lazy cell on the answers of
its source. A look does not change what any sequence shows, and an operation comes to the outcome
that belongs to what its sequences show.
-/

set_option autoImplicit false

namespace Persistent.Seq

variable {α : Type}

/-- What is shown at each position, up to the first position where nothing is shown. -/
abbrev Items (α : Type) : Type :=
  ℕ → Option α

namespace Items

def push (x : α) (f : Items α) : Items α
  | 0 => some x
  | i + 1 => f i

def behind (f : Items α) : Items α :=
  fun i => f (i + 1)

/-- The items behind the first one; behind the end is nothing. -/
def tail (f : Items α) : Items α :=
  if (f 0).isSome then behind f else fun _ => none

def take : ℕ → Items α → List α
  | 0, _ => []
  | n + 1, f =>
    match f 0 with
    | none => []
    | some x => x :: take n (behind f)

/-- There are `n` items. -/
structure EndsAt (f : Items α) (n : ℕ) : Prop where
  done : f n = none
  before : ∀ i < n, (f i).isSome

/-- Both come to an end after equally many items, equal one by one. -/
def Same [BEq α] (f g : Items α) : Prop :=
  ∃ n, EndsAt f n ∧ EndsAt g n ∧ ∀ i < n, f i == g i

theorem endsAt_zero {f : Items α} (none : f 0 = none) : EndsAt f 0 :=
  ⟨none, nofun⟩

theorem EndsAt.push {f : Items α} {n : ℕ} (some : (f 0).isSome) (h : EndsAt (behind f) n) :
    EndsAt f (n + 1) := by
  refine ⟨h.done, fun i inside => ?_⟩
  cases i with
  | zero => exact some
  | succ i => exact h.before i (Nat.lt_of_succ_lt_succ inside)

theorem EndsAt.eq_zero {f : Items α} {n : ℕ} (h : EndsAt f n) (none : f 0 = none) : n = 0 := by
  by_contra positive
  have first := h.before 0 (Nat.pos_of_ne_zero positive)
  rw [none] at first
  cases first

theorem EndsAt.le_of_none {f : Items α} {n m : ℕ} (h : EndsAt f n) (none : f m = none) :
    n ≤ m := by
  by_contra inside
  have item := h.before m (Nat.lt_of_not_le inside)
  rw [none] at item
  cases item

theorem EndsAt.unique {f : Items α} {n m : ℕ} (h : EndsAt f n) (k : EndsAt f m) : n = m :=
  Nat.le_antisymm (h.le_of_none k.done) (k.le_of_none h.done)

theorem EndsAt.behind {f : Items α} {n : ℕ} (h : EndsAt f n) (some : (f 0).isSome) :
    ∃ m, n = m + 1 ∧ EndsAt (behind f) m := by
  cases n with
  | zero =>
    rw [h.done] at some
    cases some
  | succ m => exact ⟨m, rfl, h.done, fun i inside => h.before (i + 1) (Nat.succ_lt_succ inside)⟩

section Same

variable [BEq α] {f g : Items α}

theorem same_of_none (none : f 0 = none) : Same f g ↔ g 0 = Option.none := by
  constructor
  · rintro ⟨n, ends, ends', -⟩
    obtain rfl := ends.eq_zero none
    exact ends'.done
  · intro none'
    exact ⟨0, endsAt_zero none, endsAt_zero none', nofun⟩

theorem not_same (some : (f 0).isSome) (none : g 0 = none) : ¬ Same f g := by
  rintro ⟨n, ends, ends', -⟩
  obtain rfl := ends'.eq_zero none
  rw [ends.done] at some
  cases some

theorem same_of_some {x y : α} (first : f 0 = some x) (first' : g 0 = some y) :
    Same f g ↔ x == y ∧ Same (behind f) (behind g) := by
  have some : (f 0).isSome := by rw [first]; rfl
  have some' : (g 0).isSome := by rw [first']; rfl
  constructor
  · rintro ⟨n, ends, ends', equal⟩
    obtain ⟨m, rfl, rest⟩ := ends.behind some
    obtain ⟨m', same, rest'⟩ := ends'.behind some'
    cases same
    have heads := equal 0 (Nat.succ_pos m)
    rw [first, first'] at heads
    exact ⟨heads, m, rest, rest', fun i inside => equal (i + 1) (Nat.succ_lt_succ inside)⟩
  · rintro ⟨heads, m, rest, rest', equal⟩
    refine ⟨m + 1, rest.push some, rest'.push some', fun i inside => ?_⟩
    cases i with
    | zero =>
      rw [first, first']
      exact heads
    | succ i => exact equal i (Nat.lt_of_succ_lt_succ inside)

end Same

end Items

open Items

/-- What a sequence shows in a store. -/
inductive Shows (st : Store α) : Seq α → Items α → Prop
  | nil : Shows st .nil fun _ => none
  | cons {x : α} {s : Seq α} {f : Items α} (rest : Shows st s f) : Shows st (.cons x s) (push x f)
  | list {x : α} {xs : List α} : Shows st (.list x xs) fun i => (x :: xs)[i]?
  | lazy {j : ℕ} {answer : ℕ → Option α} {k cell : ℕ} (stands : st.At j answer k cell) :
      Shows st (.lazy cell) fun i => answer (k + i)

theorem Shows.mono {st st' : Store α} (grows : st.Grows st') {s : Seq α} {f : Items α}
    (h : Shows st s f) : Shows st' s f := by
  induction h with
  | nil => exact .nil
  | cons _ ih => exact .cons ih
  | list => exact .list
  | lazy stands => exact .lazy (grows _ _ _ _ stands)

theorem Shows.unique {st : Store α} {s : Seq α} {f g : Items α} (h : Shows st s f)
    (k : Shows st s g) : f = g := by
  induction h generalizing g with
  | nil | list =>
    cases k
    rfl
  | cons _ ih =>
    cases k with
    | cons rest => rw [ih rest]
  | lazy stands =>
    cases k with
    | lazy stands' =>
      obtain ⟨-, rfl, rfl⟩ := stands.unique stands'
      rfl

theorem shows_ofList (st : Store α) (xs : List α) : Shows st (ofList xs) fun i => xs[i]? := by
  cases xs with
  | nil => exact .nil
  | cons x xs => exact .list

/-- What a look at the first cell of a sequence brings about. -/
structure Unconsed (st : Store α) (s : Seq α) (f : Items α) (r : Option (α × Seq α))
    (st' : Store α) : Prop where
  chained : st'.Chained
  grows : st.Grows st'
  settled_iff : ∀ i, st'.settled i ↔ st.settled i ∨ s = .lazy i
  item : r.map Prod.fst = f 0
  rest : ∀ x t, r = some (x, t) → Shows st' t (behind f)

theorem Shows.uncons {st : Store α} (chained : st.Chained) {s : Seq α} {f : Items α}
    (h : Shows st s f) : Unconsed st s f (s.uncons st).1 (s.uncons st).2 := by
  cases h with
  | nil => exact ⟨chained, .refl st, by simp [Seq.uncons], rfl, nofun⟩
  | cons rest =>
    refine ⟨chained, .refl st, by simp [Seq.uncons], rfl, ?_⟩
    rintro _ _ ⟨⟩
    exact rest
  | @list x xs =>
    refine ⟨chained, .refl st, by simp [Seq.uncons], rfl, ?_⟩
    rintro _ _ ⟨⟩
    exact shows_ofList st xs
  | @lazy j answer k cell stands =>
    obtain ⟨chained', grows, settled, item, next⟩ := chained.looked stands
    unfold Seq.uncons
    dsimp only
    generalize st.force cell = forced at *
    obtain ⟨step, st'⟩ := forced
    dsimp only at *
    refine ⟨chained', grows, fun i => ?_, ?_, ?_⟩
    · rw [settled, Seq.lazy.injEq]
      exact or_congr_right eq_comm
    · rw [Option.map_map]
      exact item
    · intro x t same
      obtain ⟨⟨y, cell'⟩, rfl, same⟩ := Option.map_eq_some_iff.1 same
      cases same
      have shown := Shows.lazy (next _ _ rfl)
      have moved : behind (fun i => answer (k + i)) = fun i => answer (k + 1 + i) := by
        funext i
        exact congrArg answer (by omega)
      rw [moved]
      exact shown

variable [BEq α]

/-- The outcome belongs to what the sequences of the operation show. -/
inductive Meets (st : Store α) : Operation α (Seq α) → Outcome α → Prop
  | lazily {answer : ℕ → Option α} {t : Seq α} (shown : Shows st t answer) :
      Meets st (.lazily answer) (.sequence t)
  | list {xs : List α} {t : Seq α} (shown : Shows st t fun i => xs[i]?) :
      Meets st (.list xs) (.sequence t)
  | first {s : Seq α} {f : Items α} (shows : Shows st s f) : Meets st (.first s) (.item (f 0))
  | isEmpty {s : Seq α} {f : Items α} (shows : Shows st s f) :
      Meets st (.isEmpty s) (.verdict (f 0).isNone)
  | rest {s t : Seq α} {f : Items α} (shows : Shows st s f) (shown : Shows st t (tail f)) :
      Meets st (.rest s) (.sequence t)
  | cons {x : α} {s t : Seq α} {f : Items α} (shows : Shows st s f)
      (shown : Shows st t (push x f)) : Meets st (.cons x s) (.sequence t)
  | clone {s t : Seq α} {f : Items α} (shows : Shows st s f) (shown : Shows st t f) :
      Meets st (.clone s) (.sequence t)
  | take {n : ℕ} {s : Seq α} {f : Items α} (shows : Shows st s f) :
      Meets st (.take n s) (.items (Items.take n f))
  | count {s : Seq α} {f : Items α} {n : ℕ} (shows : Shows st s f) (ends : EndsAt f n) :
      Meets st (.count s) (.number n)
  | equal {s t : Seq α} {f g : Items α} {b : Bool} (shows : Shows st s f) (shows' : Shows st t g)
      (same : b ↔ Same f g) : Meets st (.equal s t) (.verdict b)

/-- The task is on its way to the outcome of the operation. -/
inductive Stage (st : Store α) : Operation α (Seq α) → Task α → Prop
  | first {s : Seq α} {f : Items α} (shows : Shows st s f) : Stage st (.first s) (.first s)
  | isEmpty {s : Seq α} {f : Items α} (shows : Shows st s f) : Stage st (.isEmpty s) (.isEmpty s)
  | rest {s : Seq α} {f : Items α} (shows : Shows st s f) : Stage st (.rest s) (.rest s)
  | take {n more : ℕ} {s t : Seq α} {f g : Items α} {taken : List α} (shows : Shows st s f)
      (left : Shows st t g) (split : Items.take n f = taken ++ Items.take (more + 1) g) :
      Stage st (.take n s) (.take more t taken)
  | count {s t : Seq α} {f g : Items α} {n : ℕ} (shows : Shows st s f) (left : Shows st t g)
      (split : ∀ m, EndsAt g m → EndsAt f (n + m)) : Stage st (.count s) (.count t n)
  | equal {s t u v : Seq α} {f g f' g' : Items α} (shows : Shows st s f) (shows' : Shows st t g)
      (left : Shows st u f') (left' : Shows st v g') (split : Same f g ↔ Same f' g') :
      Stage st (.equal s t) (.equal u v)
  | ended {s t v : Seq α} {f g f' g' : Items α} (shows : Shows st s f) (shows' : Shows st t g)
      (none : f' 0 = none) (left' : Shows st v g') (split : Same f g ↔ Same f' g') :
      Stage st (.equal s t) (.other .none v)
  | other {x : α} {s t u v : Seq α} {f g f' g' : Items α} (shows : Shows st s f)
      (shows' : Shows st t g) (first : f' 0 = some x) (left : Shows st u (behind f'))
      (left' : Shows st v g') (split : Same f g ↔ Same f' g') :
      Stage st (.equal s t) (.other (some (x, u)) v)
  | done {op : Operation α (Seq α)} {o : Outcome α} (meets : Meets st op o) : Stage st op (.done o)

theorem Meets.mono {st st' : Store α} (grows : st.Grows st') {op : Operation α (Seq α)}
    {o : Outcome α} (h : Meets st op o) : Meets st' op o := by
  cases h with
  | lazily shown => exact .lazily (shown.mono grows)
  | list shown => exact .list (shown.mono grows)
  | first shows => exact .first (shows.mono grows)
  | isEmpty shows => exact .isEmpty (shows.mono grows)
  | rest shows shown => exact .rest (shows.mono grows) (shown.mono grows)
  | cons shows shown => exact .cons (shows.mono grows) (shown.mono grows)
  | clone shows shown => exact .clone (shows.mono grows) (shown.mono grows)
  | take shows => exact .take (shows.mono grows)
  | count shows ends => exact .count (shows.mono grows) ends
  | equal shows shows' same => exact .equal (shows.mono grows) (shows'.mono grows) same

theorem Stage.mono {st st' : Store α} (grows : st.Grows st') {op : Operation α (Seq α)}
    {p : Task α} (h : Stage st op p) : Stage st' op p := by
  cases h with
  | first shows => exact .first (shows.mono grows)
  | isEmpty shows => exact .isEmpty (shows.mono grows)
  | rest shows => exact .rest (shows.mono grows)
  | take shows left split => exact .take (shows.mono grows) (left.mono grows) split
  | count shows left split => exact .count (shows.mono grows) (left.mono grows) split
  | equal shows shows' left left' split =>
    exact .equal (shows.mono grows) (shows'.mono grows) (left.mono grows) (left'.mono grows) split
  | ended shows shows' none left' split =>
    exact .ended (shows.mono grows) (shows'.mono grows) none (left'.mono grows) split
  | other shows shows' first left left' split =>
    exact .other (shows.mono grows) (shows'.mono grows) first (left.mono grows)
      (left'.mono grows) split
  | done meets => exact .done (meets.mono grows)

theorem Stage.meets {st : Store α} {op : Operation α (Seq α)} {o : Outcome α}
    (h : Stage st op (.done o)) : Meets st op o := by
  cases h with
  | done meets => exact meets

theorem Stage.sequence {st : Store α} {op : Operation α (Seq α)} {s : Seq α}
    (h : Stage st op (.done (.sequence s))) : ∃ f, Shows st s f := by
  cases h.meets with
  | lazily shown | list shown | rest _ shown | cons _ shown | clone _ shown => exact ⟨_, shown⟩

theorem Stage.shows {st : Store α} {op : Operation α (Seq α)} {p : Task α} (h : Stage st op p)
    {s : Seq α} (asks : p.asks = some s) : ∃ f, Shows st s f := by
  cases h with
  | first shows | isEmpty shows | rest shows =>
    cases asks
    exact ⟨_, shows⟩
  | take _ left | count _ left | equal _ _ left =>
    cases asks
    exact ⟨_, left⟩
  | ended _ _ _ left' | other _ _ _ _ left' =>
    cases asks
    exact ⟨_, left'⟩
  | done => cases asks

theorem stage_taking {st : Store α} {n more : ℕ} {s t : Seq α} {f g : Items α} {taken : List α}
    (shows : Shows st s f) (left : Shows st t g)
    (split : Items.take n f = taken ++ Items.take more g) :
    Stage st (.take n s) (.taking more t taken) := by
  cases more with
  | zero =>
    rw [Items.take, List.append_nil] at split
    exact .done (split ▸ .take shows)
  | succ more => exact .take shows left split

section Resume

variable {st st' : Store α} {r : Option (α × Seq α)} {s t u v : Seq α} {f g f' g' : Items α}

theorem stage_rest (shows : Shows st s f) (step : Unconsed st s f r st') :
    Stage st' (.rest s) ((Task.rest s).resume r) := by
  refine .done (.rest (shows.mono step.grows) ?_)
  have item := step.item
  unfold tail
  rcases r with _ | ⟨x, rest⟩
  · rw [← item]
    exact .nil
  · rw [← item]
    exact step.rest x rest rfl

theorem stage_take {n more : ℕ} {taken : List α} (shows : Shows st s f)
    (step : Unconsed st t g r st')
    (split : Items.take n f = taken ++ Items.take (more + 1) g) :
    Stage st' (.take n s) ((Task.take more t taken).resume r) := by
  have shows' := shows.mono step.grows
  have item := step.item
  rw [Items.take, ← item] at split
  rcases r with _ | ⟨x, rest⟩
  · exact .done (split.trans (List.append_nil taken) ▸ .take shows')
  · refine stage_taking shows' (step.rest x rest rfl) ?_
    rw [List.append_assoc]
    exact split

theorem stage_count {n : ℕ} (shows : Shows st s f) (step : Unconsed st t g r st')
    (split : ∀ m, EndsAt g m → EndsAt f (n + m)) :
    Stage st' (.count s) ((Task.count t n).resume r) := by
  have shows' := shows.mono step.grows
  have item := step.item
  rcases r with _ | ⟨x, rest⟩
  · exact .done (.count shows' (split 0 (endsAt_zero item.symm)))
  · refine .count shows' (step.rest x rest rfl) fun m ends => ?_
    have first : (g 0).isSome := by rw [← item]; rfl
    rw [Nat.add_assoc, Nat.add_comm 1]
    exact split (m + 1) (ends.push first)

theorem stage_equal (shows : Shows st s f) (shows' : Shows st t g) (step : Unconsed st u f' r st')
    (left' : Shows st v g') (split : Same f g ↔ Same f' g') :
    Stage st' (.equal s t) ((Task.equal u v).resume r) := by
  have grows := step.grows
  have item := step.item
  rcases r with _ | ⟨x, rest⟩
  · exact .ended (shows.mono grows) (shows'.mono grows) item.symm (left'.mono grows) split
  · exact .other (shows.mono grows) (shows'.mono grows) item.symm (step.rest x rest rfl)
      (left'.mono grows) split

theorem stage_ended (shows : Shows st s f) (shows' : Shows st t g) (none : f' 0 = none)
    (step : Unconsed st v g' r st') (split : Same f g ↔ Same f' g') :
    Stage st' (.equal s t) ((Task.other .none v).resume r) := by
  refine .done (.equal (shows.mono step.grows) (shows'.mono step.grows) ?_)
  rw [split, same_of_none none, ← step.item]
  simp

theorem stage_other {x : α} (shows : Shows st s f) (shows' : Shows st t g)
    (first : f' 0 = some x) (left : Shows st u (behind f')) (step : Unconsed st v g' r st')
    (split : Same f g ↔ Same f' g') :
    Stage st' (.equal s t) ((Task.other (some (x, u)) v).resume r) := by
  have shows := shows.mono step.grows
  have shows' := shows'.mono step.grows
  have item := step.item
  rcases r with _ | ⟨y, rest⟩
  · have some : (f' 0).isSome := by rw [first]; rfl
    refine .done (.equal shows shows' ?_)
    rw [split]
    exact ⟨nofun, fun same => absurd same (not_same some item.symm)⟩
  · rw [same_of_some first item.symm] at split
    simp only [Task.resume]
    by_cases heads : x == y
    · rw [if_pos heads]
      exact .equal shows shows' (left.mono step.grows) (step.rest y rest rfl)
        (split.trans (and_iff_right heads))
    · rw [if_neg heads]
      refine .done (.equal shows shows' ?_)
      rw [split]
      exact ⟨nofun, fun both => absurd both.1 heads⟩

end Resume

/-- The look that a task asked for brings it to its next stage. -/
theorem Stage.resume {st : Store α} (chained : st.Chained) {op : Operation α (Seq α)} {p : Task α}
    (h : Stage st op p) {s : Seq α} (asks : p.asks = some s) :
    Stage (s.uncons st).2 op (p.resume (s.uncons st).1) := by
  cases h with
  | first shows =>
    cases asks
    have step := shows.uncons chained
    rw [Task.resume, step.item]
    exact .done (.first (shows.mono step.grows))
  | isEmpty shows =>
    cases asks
    have step := shows.uncons chained
    rw [Task.resume, ← Option.isNone_map, step.item]
    exact .done (.isEmpty (shows.mono step.grows))
  | rest shows =>
    cases asks
    exact stage_rest shows (shows.uncons chained)
  | take shows left split =>
    cases asks
    exact stage_take shows (left.uncons chained) split
  | count shows left split =>
    cases asks
    exact stage_count shows (left.uncons chained) split
  | equal shows shows' left left' split =>
    cases asks
    exact stage_equal shows shows' (left.uncons chained) left' split
  | ended shows shows' none left' split =>
    cases asks
    exact stage_ended shows shows' none (left'.uncons chained) split
  | other shows shows' first left left' split =>
    cases asks
    exact stage_other shows shows' first left (left'.uncons chained) split
  | done => cases asks

/-- What the start of an operation brings about. No cell is looked at. -/
structure Begun (st : Store α) (op : Operation α (Seq α)) (p : Task α) (st' : Store α) : Prop where
  chained : st'.Chained
  grows : st.Grows st'
  settled_iff : ∀ i, st'.settled i ↔ st.settled i
  stage : Stage st' op p

theorem begun {st : Store α} (chained : st.Chained) {σ : Type} {h : σ → Seq α}
    (shown : ∀ name, ∃ f, Shows st (h name) f) (op : Operation α σ) :
    Begun st (op.map h) ((op.map h).begin st).1 ((op.map h).begin st).2 := by
  have here {p : Task α} (stage : Stage st (op.map h) p) : Begun st (op.map h) p st :=
    ⟨chained, .refl st, fun _ => Iff.rfl, stage⟩
  cases op with
  | lazily answer =>
    obtain ⟨chained', grows, settled, stands⟩ := chained.wrap answer
    have shown := Shows.lazy stands
    simp only [Nat.zero_add] at shown
    exact ⟨chained', grows, settled, .done (.lazily shown)⟩
  | list xs => exact here (.done (.list (shows_ofList st xs)))
  | first name =>
    obtain ⟨f, shows⟩ := shown name
    exact here (.first shows)
  | isEmpty name =>
    obtain ⟨f, shows⟩ := shown name
    exact here (.isEmpty shows)
  | rest name =>
    obtain ⟨f, shows⟩ := shown name
    exact here (.rest shows)
  | cons x name =>
    obtain ⟨f, shows⟩ := shown name
    exact here (.done (.cons shows shows.cons))
  | clone name =>
    obtain ⟨f, shows⟩ := shown name
    exact here (.done (.clone shows shows))
  | take n name =>
    obtain ⟨f, shows⟩ := shown name
    exact here (stage_taking shows shows rfl)
  | count name =>
    obtain ⟨f, shows⟩ := shown name
    exact here (.count shows shows fun m ends => (Nat.zero_add m).symm ▸ ends)
  | equal name name' =>
    obtain ⟨f, shows⟩ := shown name
    obtain ⟨g, shows'⟩ := shown name'
    exact here (.equal shows shows' shows shows' Iff.rfl)

theorem halts_count {st : Store α} (chained : st.Chained) {s : Seq α} {f : Items α}
    (shows : Shows st s f) {m : ℕ} (ends : f m = none) (n : ℕ) : (Task.count s n).Halts st := by
  induction m generalizing st s f n with
  | zero =>
    have step := shows.uncons chained
    refine Task.halts_look rfl ?_
    rw [Option.map_eq_none_iff.1 (step.item.trans ends)]
    exact Task.halts_done _ _
  | succ m ih =>
    have step := shows.uncons chained
    refine Task.halts_look rfl ?_
    rcases looked : (s.uncons st).1 with _ | ⟨x, rest⟩
    · exact Task.halts_done _ _
    · exact ih step.chained (step.rest x rest looked) ends (n + 1)

/-- A comparison goes on only behind equal items. -/
theorem halts_equal_of {st : Store α} (chained : st.Chained) {s t : Seq α} {f g : Items α}
    (shows : Shows st s f) (shows' : Shows st t g)
    (goes : ∀ x y, f 0 = some x → g 0 = some y → x == y → ∀ st' u v, st'.Chained →
      Shows st' u (behind f) → Shows st' v (behind g) → (Task.equal u v).Halts st') :
    (Task.equal s t).Halts st := by
  have step := shows.uncons chained
  have step' := (shows'.mono step.grows).uncons step.chained
  have item := step.item
  have item' := step'.item
  refine Task.halts_look rfl ?_
  rcases looked : (s.uncons st).1 with _ | ⟨x, rest⟩
  · exact Task.halts_look rfl (Task.halts_done _ _)
  · refine Task.halts_look rfl ?_
    rcases looked' : (t.uncons (s.uncons st).2).1 with _ | ⟨y, rest'⟩
    · exact Task.halts_done _ _
    · rw [looked] at item
      rw [looked'] at item'
      simp only [Task.resume]
      split
      case isTrue equal =>
        exact goes x y item.symm item'.symm equal _ rest rest' step'.chained
          ((step.rest x rest looked).mono step'.grows) (step'.rest y rest' looked')
      case isFalse => exact Task.halts_done _ _

theorem halts_equal {st : Store α} (chained : st.Chained) {s t : Seq α} {f g : Items α}
    (shows : Shows st s f) (shows' : Shows st t g) {m : ℕ}
    (ends : f m = none ∨ ¬ f m == g m) : (Task.equal s t).Halts st := by
  induction m generalizing st s t f g with
  | zero =>
    refine halts_equal_of chained shows shows' fun x y first first' equal => ?_
    rw [first, first'] at ends
    exact absurd equal (ends.resolve_left nofun)
  | succ m ih =>
    exact halts_equal_of chained shows shows' fun _ _ _ _ _ _ _ _ chained' rest rest' =>
      ih chained' rest rest' ends

/-- The operation has an end to come to. -/
def Operation.Ends (st : Store α) : Operation α (Seq α) → Prop
  | .count s => ∃ f, Shows st s f ∧ ∃ n, f n = none
  | .equal s t => ∃ f g, Shows st s f ∧ Shows st t g ∧ ∃ n, f n = none ∨ ¬ f n == g n
  | _ => True

theorem Operation.Ends.halts {st : Store α} (chained : st.Chained) {op : Operation α (Seq α)}
    (ends : op.Ends st) : (op.begin st).1.Halts (op.begin st).2 := by
  cases op with
  | first | isEmpty | rest => exact Task.halts_look rfl (Task.halts_done _ _)
  | lazily | list | cons | clone => exact Task.halts_done _ _
  | take n s => exact Task.halts_taking n s [] st
  | count s =>
    obtain ⟨f, shows, n, none⟩ := ends
    exact halts_count chained shows none 0
  | equal s t =>
    obtain ⟨f, g, shows, shows', n, either⟩ := ends
    exact halts_equal chained shows shows' either

end Persistent.Seq
