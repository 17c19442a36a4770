import Mathlib.Data.Nat.Notation
import Mathlib.Logic.Function.Iterate
import Persistent.Seq.Basic

/-!
Operations on sequences, cut into looks. A task is an operation under way. It asks for a look at
one sequence after another until it has an outcome, so that several tasks can take turns. A task
that is left alone comes to what the operation computes.
-/

set_option autoImplicit false

namespace Persistent.Seq

variable {α : Type}

/-- An operation on sequences that are named by `σ`. -/
inductive Operation (α σ : Type) where
  | lazily (answer : ℕ → Option α)
  | list (xs : List α)
  | first (s : σ)
  | isEmpty (s : σ)
  | rest (s : σ)
  | cons (x : α) (s : σ)
  | clone (s : σ)
  | take (n : ℕ) (s : σ)
  | count (s : σ)
  | equal (s t : σ)

inductive Outcome (α : Type) where
  | item (x? : Option α)
  | verdict (b : Bool)
  | sequence (s : Seq α)
  | items (xs : List α)
  | number (n : ℕ)

/-- How far an operation has come. -/
inductive Task (α : Type) where
  | first (s : Seq α)
  | isEmpty (s : Seq α)
  | rest (s : Seq α)
  /-- One item and `more` others are still to be taken. -/
  | take (more : ℕ) (s : Seq α) (taken : List α)
  | count (s : Seq α) (n : ℕ)
  | equal (s t : Seq α)
  /-- The left side has been looked at, the right side is next. -/
  | other (left : Option (α × Seq α)) (t : Seq α)
  | done (outcome : Outcome α)

namespace Operation

def map {σ τ : Type} (f : σ → τ) : Operation α σ → Operation α τ
  | .lazily answer => .lazily answer
  | .list xs => .list xs
  | .first s => .first (f s)
  | .isEmpty s => .isEmpty (f s)
  | .rest s => .rest (f s)
  | .cons x s => .cons x (f s)
  | .clone s => .clone (f s)
  | .take n s => .take n (f s)
  | .count s => .count (f s)
  | .equal s t => .equal (f s) (f t)

/-- The operation as it is computed. -/
def demand [BEq α] (fuel : ℕ) : Operation α (Seq α) → Demand α (Outcome α)
  | .lazily answer => return .sequence (← Seq.lazily answer)
  | .list xs => return .sequence (ofList xs)
  | .first s => return .item (← s.first?)
  | .isEmpty s => return .verdict (← s.isEmpty)
  | .rest s => return .sequence (← s.rest)
  | .cons x s => return .sequence (.cons x s)
  | .clone s => return .sequence s
  | .take n s => return .items (← s.take n)
  | .count s => return .number (← s.count fuel)
  | .equal s t => return .verdict (← Seq.equal (fun x y => return x == y) fuel s t)

end Operation

namespace Task

/-- The sequence that is looked at next. -/
def asks : Task α → Option (Seq α)
  | .first s => some s
  | .isEmpty s => some s
  | .rest s => some s
  | .take _ s _ => some s
  | .count s _ => some s
  | .equal s _ => some s
  | .other _ t => some t
  | .done _ => none

theorem eq_done {p : Task α} (idle : p.asks = none) : ∃ o, p = .done o := by
  cases p with
  | done o => exact ⟨o, rfl⟩
  | _ => cases idle

def taking : ℕ → Seq α → List α → Task α
  | 0, _, taken => .done (.items taken)
  | more + 1, s, taken => .take more s taken

variable [BEq α]

/-- The task after the look that it asked for. -/
def resume (r : Option (α × Seq α)) : Task α → Task α
  | .first _ => .done (.item (r.map Prod.fst))
  | .isEmpty _ => .done (.verdict r.isNone)
  | .rest _ => .done (.sequence (r.elim .nil Prod.snd))
  | .take more _ taken =>
    match r with
    | none => .done (.items taken)
    | some (x, behind) => taking more behind (taken ++ [x])
  | .count _ n =>
    match r with
    | none => .done (.number n)
    | some (_, behind) => .count behind (n + 1)
  | .equal _ t => .other r t
  | .other none _ => .done (.verdict r.isNone)
  | .other (some (x, s)) _ =>
    match r with
    | none => .done (.verdict false)
    | some (y, t) => if x == y then .equal s t else .done (.verdict false)
  | .done outcome => .done outcome

/-- Lets the task have its next look. -/
def advance (now : Task α × Store α) : Task α × Store α :=
  match now.1.asks with
  | none => now
  | some s => (now.1.resume (s.uncons now.2).1, (s.uncons now.2).2)

/-- What is left of the operation, as it is computed. -/
def finish (fuel : ℕ) : Task α → Demand α (Outcome α)
  | .first s => return .item (← s.first?)
  | .isEmpty s => return .verdict (← s.isEmpty)
  | .rest s => return .sequence (← s.rest)
  | .take more s taken => return .items (taken ++ (← s.take (more + 1)))
  | .count s n => return .number (n + (← s.count fuel))
  | .equal s t => return .verdict (← Seq.equal (fun x y => return x == y) fuel s t)
  | .other none t => return .verdict (← t.isEmpty)
  | .other (some (x, s)) t => do
    match ← t.look with
    | none => return .verdict false
    | some (y, t) =>
      if x == y then return .verdict (← Seq.equal (fun x y => return x == y) fuel s t)
      else return .verdict false
  | .done outcome => return outcome

/-- The fuel for the next look. -/
def cost : Task α → ℕ
  | .count _ _ => 1
  | .equal _ _ => 1
  | _ => 0

omit [BEq α] in
theorem look_bind {β : Type} (s : Seq α) (f : Option (α × Seq α) → Demand α β) (st : Store α) :
    (s.look >>= f) st = f (s.uncons st).1 (s.uncons st).2 :=
  rfl

theorem finish_look {p : Task α} {s : Seq α} (asks : p.asks = some s) (fuel : ℕ) (st : Store α) :
    p.finish (fuel + p.cost) st =
      (p.resume (s.uncons st).1).finish fuel (s.uncons st).2 := by
  cases p with
  | first | isEmpty =>
    cases asks
    rfl
  | rest =>
    cases asks
    rw [finish, Seq.rest, bind_assoc, look_bind]
    rcases (s.uncons st).1 with _ | ⟨x, behind⟩ <;> rfl
  | take more _ taken =>
    cases asks
    rw [finish, Seq.take, bind_assoc, look_bind]
    rcases (s.uncons st).1 with _ | ⟨x, behind⟩
    · rw [pure_bind, List.append_nil]
      rfl
    · simp only [bind_assoc, pure_bind, resume]
      cases more with
      | zero => rfl
      | succ more => simp only [taking, finish, List.append_assoc, List.singleton_append]
  | count _ n =>
    cases asks
    rw [finish, Seq.count, cost, Seq.toList, bind_assoc, bind_assoc, look_bind]
    rcases (s.uncons st).1 with _ | ⟨x, behind⟩
    · rfl
    · simp only [bind_assoc, pure_bind, resume, finish, Seq.count, List.length_cons,
        Nat.add_assoc, Nat.add_comm 1]
  | equal _ t =>
    cases asks
    rw [finish, cost, Seq.equal, bind_assoc, look_bind]
    rcases (s.uncons st).1 with _ | ⟨x, behind⟩
    · rfl
    · simp only [resume, finish, bind_assoc, look_bind]
      rcases (t.uncons (s.uncons st).2).1 with _ | ⟨y, behind'⟩
      · rfl
      · simp only [pure_bind]
        split <;> rfl
  | other left _ =>
    cases asks
    rcases left with _ | ⟨x, left⟩
    · rfl
    · rw [finish, look_bind]
      rcases (s.uncons st).1 with _ | ⟨y, behind⟩
      · rfl
      · simp only [resume]
        split <;> rfl
  | done => cases asks

/-- A computation that has finished had the fuel for its next look. -/
theorem cost_le {p : Task α} {fuel : ℕ} {st : Store α} {r : Outcome α × Store α}
    (finished : p.finish fuel st = some r) : p.cost ≤ fuel := by
  cases fuel with
  | succ fuel => cases p <;> simp [cost]
  | zero =>
    cases p with
    | count | equal => cases finished
    | _ => exact Nat.le_refl _

/-- Looks that are still to come, at most. -/
def budget (fuel : ℕ) : Task α → ℕ
  | .first _ => 1
  | .isEmpty _ => 1
  | .rest _ => 1
  | .take more _ _ => more + 1
  | .count _ _ => fuel + 1
  | .equal _ _ => 2 * fuel + 1
  | .other _ _ => 2 * fuel + 2
  | .done _ => 0

theorem budget_resume {p : Task α} {s : Seq α} (asks : p.asks = some s) (fuel : ℕ)
    (r : Option (α × Seq α)) : (p.resume r).budget fuel < p.budget (fuel + p.cost) := by
  cases p with
  | first | isEmpty | rest => exact Nat.one_pos
  | take more _ taken =>
    rcases r with _ | ⟨x, behind⟩
    · exact Nat.succ_pos more
    · cases more <;> exact Nat.lt_succ_self _
  | count | equal =>
    rcases r with _ | ⟨x, behind⟩ <;> simp only [resume, budget, cost] <;> omega
  | other left =>
    rcases left with _ | ⟨x, left⟩
    · simp [resume, budget]
    · rcases r with _ | ⟨y, behind⟩
      · simp [resume, budget]
      · simp only [resume]
        split <;> simp [budget, cost]
  | done => cases asks

theorem advance_idle {p : Task α} (idle : p.asks = none) (st : Store α) :
    advance (p, st) = (p, st) := by
  unfold advance
  dsimp only
  rw [idle]

theorem advance_look {p : Task α} {s : Seq α} (asks : p.asks = some s) (st : Store α) :
    advance (p, st) = (p.resume (s.uncons st).1, (s.uncons st).2) := by
  unfold advance
  dsimp only
  rw [asks]

/-- A task that is left alone comes to the outcome that is computed, looks included. -/
theorem finish_iff {p : Task α} {st st' : Store α} {o : Outcome α} :
    (∃ fuel, p.finish fuel st = some (o, st')) ↔ ∃ n, advance^[n] (p, st) = (.done o, st') := by
  constructor
  · rintro ⟨fuel, finished⟩
    generalize bound : p.budget fuel = b
    induction b using Nat.strongRecOn generalizing p fuel st with
    | _ b ih =>
      cases asks : p.asks with
      | none =>
        obtain ⟨o', rfl⟩ := eq_done asks
        cases finished
        exact ⟨0, rfl⟩
      | some s =>
        obtain ⟨fuel, rfl⟩ := Nat.exists_eq_add_of_le' (cost_le finished)
        rw [finish_look asks] at finished
        obtain ⟨n, done⟩ := ih _ (bound ▸ budget_resume asks fuel _) fuel finished rfl
        refine ⟨n + 1, ?_⟩
        rw [Function.iterate_succ_apply, advance_look asks, done]
  · rintro ⟨n, done⟩
    induction n generalizing p st with
    | zero =>
      cases done
      exact ⟨0, rfl⟩
    | succ n ih =>
      rw [Function.iterate_succ_apply] at done
      cases asks : p.asks with
      | none =>
        rw [advance_idle asks] at done
        exact ih done
      | some s =>
        rw [advance_look asks] at done
        obtain ⟨fuel, finished⟩ := ih done
        exact ⟨fuel + p.cost, (finish_look asks fuel st).trans finished⟩

/-- Left alone, the task comes to an outcome. -/
def Halts (p : Task α) (st : Store α) : Prop :=
  ∃ n o st', advance^[n] (p, st) = (.done o, st')

theorem halts_done (o : Outcome α) (st : Store α) : (done o).Halts st :=
  ⟨0, o, st, rfl⟩

theorem halts_look {p : Task α} {s : Seq α} (asks : p.asks = some s) {st : Store α}
    (next : (p.resume (s.uncons st).1).Halts (s.uncons st).2) : p.Halts st := by
  obtain ⟨n, o, st', ends⟩ := next
  refine ⟨n + 1, o, st', ?_⟩
  rw [Function.iterate_succ_apply, advance_look asks, ends]

theorem halts_taking (more : ℕ) (s : Seq α) (taken : List α) (st : Store α) :
    (taking more s taken).Halts st := by
  induction more generalizing s taken st with
  | zero => exact halts_done _ st
  | succ more ih =>
    refine halts_look rfl ?_
    rcases (s.uncons st).1 with _ | ⟨x, behind⟩
    · exact halts_done _ _
    · exact ih behind _ _

end Task

namespace Operation

/-- The task at its start. A new source is wrapped at once. -/
def begin (op : Operation α (Seq α)) (st : Store α) : Task α × Store α :=
  match op with
  | .lazily answer => (.done (.sequence (.lazy (st.wrap answer).1)), (st.wrap answer).2)
  | .list xs => (.done (.sequence (ofList xs)), st)
  | .first s => (.first s, st)
  | .isEmpty s => (.isEmpty s, st)
  | .rest s => (.rest s, st)
  | .cons x s => (.done (.sequence (.cons x s)), st)
  | .clone s => (.done (.sequence s), st)
  | .take n s => (.taking n s [], st)
  | .count s => (.count s 0, st)
  | .equal s t => (.equal s t, st)

variable [BEq α]

theorem finish_begin (op : Operation α (Seq α)) (fuel : ℕ) (st : Store α) :
    (op.begin st).1.finish fuel (op.begin st).2 = op.demand fuel st := by
  cases op with
  | take n s => cases n <;> rfl
  | count s => simp only [begin, Task.finish, Nat.zero_add, demand]
  | _ => rfl

theorem demand_iff {op : Operation α (Seq α)} {st st' : Store α} {o : Outcome α} :
    (∃ fuel, op.demand fuel st = some (o, st')) ↔
      ∃ n, Task.advance^[n] (op.begin st) = (.done o, st') := by
  simp only [← finish_begin]
  exact Task.finish_iff

end Operation

end Persistent.Seq
