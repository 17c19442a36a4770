import Mathlib.Data.List.Basic

/-!
Walks over finitely many items that report how many are still to come. A walk is told by its view,
the list of items in front of it: if each call takes the first item of the view and counts one
down, and the count starts at the length of the view, then the count is exact to the end.
-/

set_option autoImplicit false

namespace Persistent

variable {σ ε : Type}

/-- Calls on `s` yield the items and then nothing more. Before each call and at the end
`remaining` is the number of items still to come. -/
inductive Enumerates (next : σ → Option (ε × σ)) (remaining : σ → ℕ) : σ → List ε → Prop
  | done {s : σ} (ended : next s = none) (empty : remaining s = 0) :
      Enumerates next remaining s []
  | item {s t : σ} {e : ε} {es : List ε} (yielded : next s = some (e, t))
      (counted : remaining s = remaining t + 1) (behind : Enumerates next remaining t es) :
      Enumerates next remaining s (e :: es)

/-- The counts down from `n` to zero. -/
def countdown (n : ℕ) : List ℕ :=
  (List.range (n + 1)).reverse

theorem countdown_succ (n : ℕ) : countdown (n + 1) = (n + 1) :: countdown n := by
  rw [countdown, List.range_succ, List.reverse_append]
  rfl

/-- One call as the view sees it. -/
def Takes (remaining : σ → ℕ) (view : σ → List ε) (s : σ) : Option (ε × σ) → Prop
  | none => view s = []
  | some (e, t) => view s = e :: view t ∧ remaining t = remaining s - 1

theorem Takes.congr {remaining : σ → ℕ} {view : σ → List ε} {s s' : σ} {r : Option (ε × σ)}
    (takes : Takes remaining view s r) (same : view s' = view s)
    (count : remaining s' = remaining s) : Takes remaining view s' r := by
  cases r with
  | none => exact same.trans takes
  | some r => exact ⟨same.trans takes.1, takes.2.trans (by rw [count])⟩

theorem enumerates_of_takes {next : σ → Option (ε × σ)} {remaining : σ → ℕ} {view : σ → List ε}
    (takes : ∀ s, Takes remaining view s (next s)) {s : σ}
    (count : remaining s = (view s).length) : Enumerates next remaining s (view s) := by
  generalize shown : view s = es at count
  induction es generalizing s with
  | nil =>
    have call := takes s
    cases yielded : next s with
    | none => exact .done yielded count
    | some r =>
      rw [yielded, Takes, shown] at call
      cases call.1
  | cons e es ih =>
    have call := takes s
    cases yielded : next s with
    | none =>
      rw [yielded, Takes, shown] at call
      cases call
    | some r =>
      obtain ⟨first, t⟩ := r
      rw [yielded, Takes, shown] at call
      obtain ⟨same, down⟩ := call
      rw [List.cons.injEq] at same
      obtain ⟨rfl, behind⟩ := same
      rw [List.length_cons] at count
      exact .item yielded (by omega) (ih behind.symm (by omega))

namespace Enumerates

variable {next : σ → Option (ε × σ)} {remaining : σ → ℕ} {s : σ} {es : List ε}

theorem remaining_eq (walk : Enumerates next remaining s es) : remaining s = es.length := by
  induction walk with
  | done _ empty => exact empty
  | item _ counted _ ih => rw [counted, ih, List.length_cons]

/-- Whatever collects the items and the counts call by call collects just these. -/
theorem collected {toList : σ → List ε} {counts : σ → List ℕ}
    (ends : ∀ s, next s = none → toList s = [] ∧ counts s = [remaining s])
    (goes : ∀ s e t, next s = some (e, t) →
      toList s = e :: toList t ∧ counts s = remaining s :: counts t)
    (walk : Enumerates next remaining s es) : toList s = es ∧ counts s = countdown es.length := by
  induction walk with
  | @done s ended empty =>
    obtain ⟨items, reported⟩ := ends s ended
    exact ⟨items, by rw [reported, empty]; rfl⟩
  | @item s t e es yielded counted behind ih =>
    obtain ⟨items, reported⟩ := goes s e t yielded
    refine ⟨by rw [items, ih.1], ?_⟩
    rw [reported, ih.2, counted, behind.remaining_eq, List.length_cons, countdown_succ]

end Enumerates

end Persistent
