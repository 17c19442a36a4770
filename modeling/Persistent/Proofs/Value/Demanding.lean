import Persistent.Proofs.Value.Looking
import Persistent.Value.Collection
import Persistent.Value.Sequence

/-!
What the operations on a sequence demand of it. Each looks at so many places from the front,
whatever the sequence is made of and however much of it is known, and calls the sources for the
cells there that nobody has looked at. So all of them answer on endless sequences, but for a lookup
that has no default and fails, which counts the items.
-/

set_option autoImplicit false

open Persistent.Seq (Ahead Reached)

namespace Persistent.Value

theorem nth_eq (fuel : ℕ) (v : Value) (index : Int64) (default : Option Value) :
    v.nth fuel index default = (do
      match (← v.item? index) <|> default with
      | some x => return x
      | none => throw (.indexOutOfRange index (← v.count fuel))) := by
  unfold nth
  congr 1
  funext o
  cases o <;> cases default <;> rfl

section Hashing

variable [Hasher]

section Action

variable {A B : Type} {u u' u'' : Store Value} {looked looked' : Seq Value → ℕ → Prop} {a : A}

theorem Looks.lift {d : ℕ → Demand Value A} (h : Looks d u looked a u') :
    Looks (fun fuel => (liftM (d fuel) : Action A).run) u looked (.ok a) u' :=
  h.returns

theorem Looks.andThen {c : ℕ → Action A} {f : ℕ → A → Action B} {r : Except Fault B}
    (h : Looks (fun fuel => (c fuel).run) u looked (.ok a) u')
    (k : Looks (fun fuel => (f fuel a).run) u' looked' r u'') :
    Looks (fun fuel => (c fuel >>= f fuel).run) u (fun s k => looked s k ∨ looked' s k) r u'' :=
  Looks.bind (f := fun fuel => ExceptT.bindCont (f fuel)) h k

/-- What is made of an answer without a further look. -/
theorem Looks.answers {c : ℕ → Action A} {g : A → B}
    (h : Looks (fun fuel => (c fuel).run) u looked (.ok a) u') :
    Looks (fun fuel => (do return g (← c fuel) : Action B).run) u looked (.ok (g a)) u' :=
  (h.andThen (f := fun _ a => pure (g a)) (looks_pure h.advances.ordered (Except.ok (g a)))).congr
    fun _ _ => or_iff_left id

end Action

section Operations

variable {u : Store Value} (ordered : Ordered u) {s : Seq Value} {f : Seq.Items Value}
  (shows : Seq.Shows u s f)
include ordered shows

theorem first?_looks :
    Looks (fun _ => s.first?) u (fun t k => t = s ∧ Front f 1 k) (f 0) (s.uncons u).2 :=
  (shows.uncons ordered.chained).item ▸ (look_looks ordered shows).returns

theorem isEmpty_looks :
    Looks (fun _ => s.isEmpty) u (fun t k => t = s ∧ Front f 1 k) (f 0).isNone
      (s.uncons u).2 := by
  have item := (shows.uncons ordered.chained).item
  rw [← item, Option.isNone_map]
  exact (look_looks ordered shows).returns

theorem rest_onward {x : Value} {rest : Seq Value} (here : (s.uncons u).1 = some (x, rest)) :
    Looks (fun _ => s.rest) u (fun t k => t = s ∧ Front f 1 k) rest (s.uncons u).2 := by
  have answered := looks_pure (advances_uncons ordered s).ordered rest
  refine look_onward ordered shows here (answered.congr fun t k => ?_)
  simp only [not_front_zero, and_false]

theorem rest_looks :
    ∃ t u', Looks (fun _ => s.rest) u (fun t k => t = s ∧ Front f 1 k) t u' ∧
      Seq.Shows u' t (Seq.Items.tail f) := by
  cases first : f 0 with
  | none =>
    rw [Seq.Items.tail_ended first]
    refine ⟨.nil, _, look_ended ordered shows first (fun _ => ?_) 0, .nil⟩
    rfl
  | some x =>
    rw [Seq.Items.tail_onward first]
    obtain ⟨rest, here, behind⟩ := exists_uncons ordered shows first
    exact ⟨rest, _, rest_onward ordered shows here, behind⟩

theorem get?_looks (n : ℕ) :
    ∃ u', Looks (fun _ => s.get? n) u (fun t k => t = s ∧ Front f (n + 1) k)
      (Seq.Items.take (n + 1) f)[n]? u' := by
  induction n generalizing u s f with
  | zero =>
    have item : (Seq.Items.take 1 f)[0]? = f 0 := by
      rw [Seq.Items.take]
      cases f 0 <;> rfl
    rw [item]
    exact ⟨_, first?_looks ordered shows⟩
  | succ n ih =>
    rw [Seq.Items.take]
    unfold Seq.get?
    cases first : f 0 with
    | none =>
      refine ⟨_, look_ended ordered shows first (fun _ => ?_) _⟩
      rfl
    | some x =>
      obtain ⟨rest, here, behind⟩ := exists_uncons ordered shows first
      obtain ⟨u', found⟩ := ih (advances_uncons ordered s).ordered behind
      exact ⟨u', look_onward ordered shows here found⟩

/-- The items are counted up to the end, at which the count looks as well. -/
theorem count_looks {n : ℕ} (ends : Seq.Items.EndsAt f n) :
    ∃ u', Looks (fun fuel => s.count fuel) u (fun t k => t = s ∧ Front f (n + 1) k) n u' := by
  obtain ⟨u', taken⟩ := take_looks (n + 1) ordered shows
  have items : Looks (fun fuel => s.toList fuel) u (fun t k => t = s ∧ Front f (n + 1) k)
      (Seq.Items.take (n + 1) f) u' := by
    refine taken.eventually (N := n + 1) fun fuel enough => ?_
    obtain ⟨more, rfl⟩ := Nat.exists_eq_add_of_le enough
    rw [Nat.add_right_comm]
    exact toList_eq_take n more ordered shows ends
  have length : (Seq.Items.take (n + 1) f).length = n := by
    rw [Seq.Items.take_of_ends ends (Nat.le_succ n), Seq.Items.length_take ends.before]
  have counted := items.returns (f := List.length)
  rw [length] at counted
  exact ⟨u', counted⟩

/-- An endless sequence is walked until the fuel is used up. -/
theorem toList_endless (endless : ∀ k, (f k).isSome) (fuel : ℕ) : s.toList fuel u = none := by
  induction fuel generalizing u s f with
  | zero => rfl
  | succ fuel ih =>
    obtain ⟨x, first⟩ := Option.isSome_iff_exists.1 (endless 0)
    obtain ⟨rest, here, behind⟩ := exists_uncons ordered shows first
    have looked : s.look u = some (some (x, rest), (s.uncons u).2) := by rw [← here]; rfl
    have walked := ih (advances_uncons ordered s).ordered behind fun k => endless (k + 1)
    rw [Seq.toList, bind_of_eq looked]
    exact congrArg (· >>= _) walked

theorem seq?_looks :
    Looks (fun _ => (Value.seq s).seq?.run) u (fun t k => t = s ∧ Front f 1 k)
      (.ok (if (f 0).isNone then none else some s)) (s.uncons u).2 := by
  have asked := (isEmpty_looks ordered shows).lift.answers
    (g := fun e => if e then none else some s)
  exact asked

/-- Of an empty sequence nothing is looked at again. -/
theorem opened_ended {A : Type} {g : Seq Value → Action A} {a : A} (none : f 0 = none)
    (answer : g .nil = pure a) (m : ℕ) :
    Looks (fun _ => ((Value.seq s).seqOrEmpty >>= g).run) u (fun t k => t = s ∧ Front f (m + 1) k)
      (.ok a) (s.uncons u).2 := by
  have opened := (seq?_looks ordered shows).answers (g := fun o => o.getD Seq.nil)
  have answered : Looks (fun _ => (g .nil).run) (s.uncons u).2 (fun _ _ => False) (.ok a)
      (s.uncons u).2 := by
    rw [answer]
    exact looks_pure (advances_uncons ordered s).ordered (Except.ok a)
  rw [none] at opened
  refine (opened.andThen (f := fun _ => g) answered).congr fun t k => ?_
  rw [or_false, front_of_ends (Seq.Items.endsAt_zero none) (Nat.succ_pos m)]

/-- A sequence with a first item is handed on. -/
theorem opened_onward {A : Type} {g : Seq Value → Action A} {r : Except Fault A} {x : Value}
    (first : f 0 = some x) {m : ℕ} {u' : Store Value}
    (onward : Looks (fun _ => (g s).run) (s.uncons u).2 (fun t k => t = s ∧ Front f (m + 1) k)
      r u') :
    Looks (fun _ => ((Value.seq s).seqOrEmpty >>= g).run) u (fun t k => t = s ∧ Front f (m + 1) k)
      r u' := by
  have opened := (seq?_looks ordered shows).answers (g := fun o => o.getD Seq.nil)
  rw [first] at opened
  exact (opened.andThen (f := fun _ => g) onward).widen (Nat.succ_pos m)

theorem first_looks :
    ∃ u', Looks (fun _ => (Value.seq s).first.run) u (fun t k => t = s ∧ Front f 1 k)
      (.ok ((f 0).getD .nil)) u' := by
  unfold Value.first
  have onward := advances_uncons ordered s
  cases first : f 0 with
  | none =>
    refine ⟨_, opened_ended ordered shows first ?_ 0⟩
    rfl
  | some x =>
    have again := (first?_looks onward.ordered (shows.mono onward.grows)).lift.answers
      (g := fun o => o.getD Value.nil)
    rw [first] at again
    exact ⟨_, opened_onward ordered shows first again⟩

theorem rest_of_looks :
    ∃ t u', Looks (fun _ => (Value.seq s).rest.run) u (fun t k => t = s ∧ Front f 1 k)
      (.ok (.seq t)) u' ∧ Seq.Shows u' t (Seq.Items.tail f) := by
  unfold Value.rest
  have onward := advances_uncons ordered s
  cases first : f 0 with
  | none =>
    refine ⟨.nil, _, opened_ended ordered shows first ?_ 0, Seq.Items.tail_ended first ▸ .nil⟩
    rfl
  | some x =>
    obtain ⟨t, u', again, behind⟩ := rest_looks onward.ordered (shows.mono onward.grows)
    exact ⟨t, u', opened_onward ordered shows first (again.lift.answers (g := Value.seq)), behind⟩

/-- What follows the first item, if anything does, is looked at as well. -/
theorem next_looks :
    ∃ t u', Looks (fun _ => (Value.seq s).next.run) u (fun t k => t = s ∧ Front f 2 k)
      (.ok (if (Seq.Items.tail f 0).isNone then .nil else .seq t)) u' ∧
      Seq.Shows u' t (Seq.Items.tail f) := by
  unfold Value.next
  have onward := advances_uncons ordered s
  have shows' := shows.mono onward.grows
  cases first : f 0 with
  | none =>
    rw [Seq.Items.tail_ended first]
    refine ⟨.nil, _, opened_ended ordered shows first ?_ 1, .nil⟩
    rfl
  | some x =>
    obtain ⟨rest, here, behind⟩ := exists_uncons onward.ordered shows' first
    have onward' := advances_uncons onward.ordered s
    have asked := (isEmpty_looks onward'.ordered behind).lift.answers
      (g := fun e => if e then Value.nil else .seq rest)
    have both := (rest_onward onward.ordered shows' here).lift.andThen
      (f := fun _ t => (do return if ← t.isEmpty then .nil else .seq t : Action Value))
      (asked.further onward.ordered shows' here)
    rw [Seq.Items.tail_onward first]
    exact ⟨rest, _, opened_onward ordered shows first (both.widen (Nat.le_succ 1)),
      behind.mono (advances_uncons onward'.ordered rest).grows⟩

end Operations

section Lookup

variable {v : Value} {index : Int64} {default : Option Value} {u u' u'' : Store Value}
  {looked looked' : Seq Value → ℕ → Prop}

/-- Neither for an item that is there nor for a default is anything counted. -/
theorem nth_answers {o : Option Value} {x : Value}
    (asked : Looks (fun _ => (v.item? index).run) u looked (.ok o) u')
    (answer : (o <|> default) = some x) :
    Looks (fun fuel => (v.nth fuel index default).run) u looked (.ok x) u' := by
  simp only [nth_eq]
  refine (asked.andThen ?_).congr fun _ _ => or_iff_left id
  rw [answer]
  exact looks_pure asked.advances.ordered (Except.ok x)

theorem nth_fails {n : ℕ} (asked : Looks (fun _ => (v.item? index).run) u looked (.ok none) u')
    (counted : Looks (fun fuel => (v.count fuel).run) u' looked' (.ok n) u'') :
    Looks (fun fuel => (v.nth fuel index none).run) u (fun s k => looked s k ∨ looked' s k)
      (.error (.indexOutOfRange index n)) u'' := by
  simp only [nth_eq]
  refine asked.andThen ((counted.andThen ?_).congr fun _ _ => or_iff_left id)
  exact looks_pure counted.advances.ordered (Except.error (Fault.indexOutOfRange index n))

end Lookup

section Indexed

variable {u : Store Value} (ordered : Ordered u) {s : Seq Value} {f : Seq.Items Value}
  (shows : Seq.Shows u s f) {index : Int64}
include ordered

theorem item?_before (before : index < 0) :
    Looks (fun _ => ((Value.seq s).item? index).run) u (fun _ _ => False) (.ok none) u := by
  have item : (Value.seq s).item? index = pure none := if_pos before
  rw [item]
  exact looks_pure ordered (Except.ok none)

include shows

theorem item?_inside (inside : ¬index < 0) :
    ∃ u', Looks (fun _ => ((Value.seq s).item? index).run) u
      (fun t k => t = s ∧ Front f (index.toNatClampNeg + 1) k)
      (.ok (Seq.Items.take (index.toNatClampNeg + 1) f)[index.toNatClampNeg]?) u' := by
  obtain ⟨u', found⟩ := get?_looks ordered shows index.toNatClampNeg
  have item : (Value.seq s).item? index = liftM (s.get? index.toNatClampNeg) := if_neg inside
  rw [item]
  exact ⟨u', found.lift⟩

/-- A lookup outside the sequence that has no default looks at all of it. -/
theorem nth_outside {n : ℕ} (ends : Seq.Items.EndsAt f n)
    (outside : index < 0 ∨ n ≤ index.toNatClampNeg) :
    ∃ u', Looks (fun fuel => ((Value.seq s).nth fuel index none).run) u
      (fun t k => t = s ∧ Front f (n + 1) k) (.error (.indexOutOfRange index n)) u' := by
  by_cases before : index < 0
  · have asked := item?_before (s := s) ordered before
    obtain ⟨u', counted⟩ := count_looks ordered shows ends
    exact ⟨u', (nth_fails asked counted.lift).congr fun _ _ => by simp only [false_or]⟩
  · have past : n ≤ index.toNatClampNeg := outside.resolve_left before
    have none : (Seq.Items.take (index.toNatClampNeg + 1) f)[index.toNatClampNeg]? = none := by
      rw [Seq.Items.take_of_ends ends (by omega), List.getElem?_eq_none_iff]
      exact (Seq.Items.length_take ends.before).trans_le past
    obtain ⟨u', asked⟩ := item?_inside ordered shows before
    rw [none] at asked
    obtain ⟨u'', counted⟩ := count_looks asked.advances.ordered
      (shows.mono asked.advances.grows) ends
    refine ⟨u'', ((nth_fails asked counted.lift).congr fun t k => ?_)⟩
    rw [front_of_ends ends (Nat.lt_succ_of_le past), or_self]

/-- Nobody answers how long an endless sequence is. -/
theorem nth_endless (endless : ∀ k, (f k).isSome) (before : index < 0) (fuel : ℕ) :
    ((Value.seq s).nth fuel index none).run u = none := by
  have item : (Value.seq s).item? index = pure none := if_pos before
  have counted : s.count fuel u = none :=
    congrArg (· >>= _) (toList_endless ordered shows endless fuel)
  rw [nth_eq, item]
  change ((s.count fuel u).bind _).bind _ = none
  rw [counted]
  rfl

end Indexed

/-- From `st` the computation comes to `r` and leaves `st'`. It has looked at the first `m` places
of the sequence, at none behind its end, and at nothing else. Each source has been called once for
each of its cells there that nobody had looked at. -/
structure Visits {A : Type} (st : Store Value) (s : Seq Value) (f : Seq.Items Value) (m : ℕ)
    (c : ℕ → Demand Value A) (r : A) (st' : Store Value) : Prop where
  comes : Comes c st r st'
  ordered : Ordered st'
  shows : Seq.Shows st' s f
  settled_iff : ∀ i, st'.settled i ↔ st.settled i ∨ ∃ k, Front f m k ∧ Ahead st' s k i
  reached : ∀ k, Front f m k → Reached st' s k
  calls : ∀ j, ∃ cells : List ℕ, cells.Nodup ∧
    (∀ i, i ∈ cells ↔
      i ∈ st'.cellsOf j ∧ ¬st.settled i ∧ ∃ k, Front f m k ∧ Ahead st' s k i) ∧
    st'.callsOf j = st.callsOf j + cells.length

section Visits

variable {A : Type} {st st' : Store Value} {s : Seq Value} {f : Seq.Items Value}
  {c : ℕ → Demand Value A} {r : A}

theorem Looks.visits {m : ℕ} (ordered : Ordered st) (shows : Seq.Shows st s f)
    (h : Looks c st (fun t k => t = s ∧ Front f m k) r st') : Visits st s f m c r st' := by
  have settled (i : ℕ) :
      st'.settled i ↔ st.settled i ∨ ∃ k, Front f m k ∧ Ahead st' s k i := by
    rw [h.settled_iff st' (.refl st'), exists_on]
  refine ⟨h.comes, h.advances.ordered, shows.mono h.advances.grows, settled,
    fun k front => h.reached s k ⟨rfl, front⟩, fun j => ⟨_, (Store.nodup_cellsOf st' j).filter _,
      fun i => ?_, h.advances.extended.callsOf_eq ordered.chained j⟩⟩
  rw [List.mem_filter, Bool.and_eq_true, settled, Bool.not_eq_true', Bool.not_eq_true,
    and_congr_right_iff]
  intro _
  constructor
  · rintro ⟨unknown, before | front⟩
    · exact absurd before (by simp [unknown])
    · exact ⟨unknown, front⟩
  · exact fun ⟨unknown, front⟩ => ⟨unknown, .inr front⟩

/-- Without a look no place is visited. -/
theorem Looks.visits_none (ordered : Ordered st) (shows : Seq.Shows st s f)
    (h : Looks c st (fun _ _ => False) r st') : Visits st s f 0 c r st' :=
  (h.congr fun _ _ => by simp only [not_front_zero, and_false]).visits ordered shows

end Visits

/-- What each operation answers on a sequence that shows `f`, and how many places it visits. A
negative index stands in front of the first place. To put items in front is to put cons cells
there, which leaves the store as it is. -/
structure Demands (st : Store Value) (s : Seq Value) (f : Seq.Items Value) : Prop where
  seq : ∃ st', Visits st s f 1 (fun _ => (Value.seq s).seq?.run)
    (.ok (if (f 0).isNone then none else some s)) st'
  first : ∃ st', Visits st s f 1 (fun _ => (Value.seq s).first.run) (.ok ((f 0).getD .nil)) st'
  rest : ∃ t st', Visits st s f 1 (fun _ => (Value.seq s).rest.run) (.ok (.seq t)) st' ∧
    Seq.Shows st' t (Seq.Items.tail f)
  next : ∃ t st', Visits st s f 2 (fun _ => (Value.seq s).next.run)
    (.ok (if (Seq.Items.tail f 0).isNone then .nil else .seq t)) st' ∧
    Seq.Shows st' t (Seq.Items.tail f)
  nth : ∀ (index : Int64) (default : Option Value) (x : Value), ¬index < 0 →
    ((Seq.Items.take (index.toNatClampNeg + 1) f)[index.toNatClampNeg]? <|> default) = some x →
    ∃ st', Visits st s f (index.toNatClampNeg + 1)
      (fun fuel => ((Value.seq s).nth fuel index default).run) (.ok x) st'
  nth_before : ∀ (index : Int64) (default : Value), index < 0 →
    Visits st s f 0 (fun fuel => ((Value.seq s).nth fuel index (some default)).run)
      (.ok default) st
  nth_outside : ∀ (index : Int64) (n : ℕ), Seq.Items.EndsAt f n →
    index < 0 ∨ n ≤ index.toNatClampNeg →
    ∃ st', Visits st s f (n + 1) (fun fuel => ((Value.seq s).nth fuel index none).run)
      (.error (.indexOutOfRange index n)) st'
  nth_endless : (∀ k, (f k).isSome) → ∀ index : Int64, index < 0 →
    ∀ fuel, ((Value.seq s).nth fuel index none).run st = none
  take : ∀ n, ∃ st', Visits st s f n (fun _ => s.take n) (Seq.Items.take n f) st'
  conj : ∀ x, Visits st s f 0 (fun fuel => ((Value.seq s).conj fuel x).run)
    (.ok (.seq (.cons x s))) st
  conjAll : ∀ xs : List Value, Visits st s f 0
    (fun fuel => ((Value.seq s).conjAll fuel xs).run)
    (.ok (.seq (xs.foldl (fun s x => .cons x s) s))) st

theorem demands {st : Store Value} (ordered : Ordered st) {s : Seq Value} {f : Seq.Items Value}
    (shows : Seq.Shows st s f) : Demands st s f where
  seq := ⟨_, (seq?_looks ordered shows).visits ordered shows⟩
  first := (first_looks ordered shows).imp fun _ looks => looks.visits ordered shows
  rest := by
    obtain ⟨t, st', looks, behind⟩ := rest_of_looks ordered shows
    exact ⟨t, st', looks.visits ordered shows, behind⟩
  next := by
    obtain ⟨t, st', looks, behind⟩ := next_looks ordered shows
    exact ⟨t, st', looks.visits ordered shows, behind⟩
  nth index default x inside answer := by
    obtain ⟨st', asked⟩ := item?_inside ordered shows inside
    exact ⟨st', (nth_answers asked answer).visits ordered shows⟩
  nth_before index default before :=
    (nth_answers (item?_before ordered before) rfl).visits_none ordered shows
  nth_outside index n ends outside :=
    (nth_outside ordered shows ends outside).imp fun _ looks => looks.visits ordered shows
  nth_endless endless _ before := nth_endless ordered shows endless before
  take n := (take_looks n ordered shows).imp fun _ looks => looks.visits ordered shows
  conj x := (looks_pure ordered (Except.ok (Value.seq (.cons x s)))).visits_none ordered shows
  conjAll xs :=
    (looks_pure ordered (Except.ok (Value.seq (xs.foldl (fun s x => .cons x s) s)))).visits_none
      ordered shows

/-- In any ordered store the operations on a sequence visit the places that they have to, and no
more. The store of a program is ordered, and every sequence in it shows items. -/
theorem sequence_demands :
    (∀ st, Ordered st → ∀ s f, Seq.Shows st s f → Demands st s f) ∧
      ∀ steps : List (Step × ℕ), Ordered (run steps).store ∧
        (∀ v ∈ (run steps).values, In (run steps).store v) ∧
        ∀ s, In (run steps).store (.seq s) → ∃ f, Seq.Shows (run steps).store s f :=
  ⟨fun _ ordered _ _ shows => demands ordered shows, fun steps =>
    ⟨ordered_run steps, (valid_run steps).values,
      fun _ valid => exists_shows (ordered_run steps) valid⟩⟩

end Hashing

/-- An endless sequence with its first cell looked at, and an item put in front of it. -/
def endlessBehindItem : List (Step × ℕ) :=
  [(.int 7, 0), (.lazy fun _ => some 0, 0), (.conj 1 0, 0), (.tail 1, 0)]

attribute [local instance] Hasher.sum in
/-- What is demanded of the item in front of the endless sequence. -/
theorem sequence_demands_endless :
    Ordered (run endlessBehindItem).store ∧ (run endlessBehindItem).store.settled 0 ∧
      ¬(run endlessBehindItem).store.settled 1 ∧
      Value.seq (.cons (.int 7) (.lazy 0)) ∈ (run endlessBehindItem).values ∧
      ∃ f, Seq.Shows (run endlessBehindItem).store (.cons (.int 7) (.lazy 0)) f ∧
        (∀ k, (f k).isSome) ∧
        Demands (run endlessBehindItem).store (.cons (.int 7) (.lazy 0)) f := by
  have stands : (run endlessBehindItem).store.At 0
      (fun _ => (some 0).map (run (endlessBehindItem.take 1)).value) 0 0 := ⟨rfl, rfl⟩
  have shows := Seq.Shows.cons (x := Value.int 7) (.lazy stands)
  have values : (run endlessBehindItem).values = [.int 7, .seq (.lazy 0),
    .seq (.cons (.int 7) (.lazy 0)), .seq (.lazy 1)] := rfl
  have ordered := (sequence_demands.2 endlessBehindItem).1
  refine ⟨ordered, rfl, nofun, ?_, _, shows, fun k => ?_,
    sequence_demands.1 _ ordered _ _ shows⟩
  · rw [values]
    simp
  · cases k <;> rfl

end Persistent.Value
