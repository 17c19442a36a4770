import Mathlib.Data.List.Induction
import Persistent.Proofs.Delay.Exclusion

/-!
What the steps so far tell of each thread: what it asks with, and how it came to its phase. An
answer is the value of the thunk, unless the thread gave up on the lock while another thread held it
and then found the value still unset.
-/

set_option autoImplicit false

namespace Persistent.Delay

variable {α : Type}

/-- A fresh delay after some steps. -/
def after (x : α) (steps : List (Step α)) : Delay α :=
  run { result := x } steps

theorem after_concat (x : α) (steps : List (Step α)) (s : Step α) :
    after x (steps ++ [s]) = (after x steps).step s := by
  unfold after run
  rw [List.foldl_append]
  rfl

theorem after_append (x : α) (steps more : List (Step α)) :
    after x (steps ++ more) = (after x steps).run more :=
  List.foldl_append

theorem safe_after (x : α) (steps : List (Step α)) : Safe x (after x steps) :=
  (safe_fresh x).run steps

def Step.asks? : Step α → Option (Option α)
  | .spawn timeout => some timeout
  | _ => none

/-- For each thread of a run, what it asks with: no timeout, or the value to answer after one. -/
def asked (steps : List (Step α)) : List (Option α) :=
  steps.filterMap Step.asks?

theorem size_after (x : α) (steps : List (Step α)) :
    (after x steps).threads.size = (asked steps).length := by
  induction steps using List.reverseRecOn with
  | nil => rfl
  | append_singleton steps s ih =>
    rw [after_concat, asked, List.filterMap_append, List.length_append]
    change _ = (asked steps).length + _
    rw [← ih]
    have moves := moves_step (after x steps) s
    generalize (after x steps).step s = d at moves
    cases moves with
    | idle still =>
      cases s with
      | spawn timeout => exact absurd rfl (still timeout)
      | _ => rfl
    | spawned timeout => exact Array.size_push ..
    | _ => exact Array.size_setIfInBounds

/-- Thread `i` gave up on the lock while another thread held it. -/
inductive GaveUp (x : α) (i : ℕ) (timeout : α) : List (Step α) → Prop
  | intro {front mid : List (Step α)} {j : ℕ} (other : j ≠ i)
      (waits : (after x front).threads[i]? = some (.waiting (some timeout)))
      (held : (after x front).holder = some j) : GaveUp x i timeout (front ++ .giveUp i :: mid)

/-- Thread `i` gave up on the lock, and then read the cell again and found it unset. -/
inductive TimedOut (x : α) (i : ℕ) (timeout : α) : List (Step α) → Prop
  | intro {front back : List (Step α)} (gaveUp : GaveUp x i timeout front)
      (reads : (after x front).threads[i]? = some (.gaveUp timeout))
      (unset : (after x front).value = none) : TimedOut x i timeout (front ++ .advance i :: back)

/-- How a thread that asks with a timeout, or with none, may have come to its phase. -/
inductive Explained (x : α) (steps : List (Step α)) (i : ℕ) (timeout : Option α) : Phase α → Prop
  | reading : Explained x steps i timeout (.reading timeout)
  | waiting : Explained x steps i timeout (.waiting timeout)
  | inside {phase : Phase α} (inside : phase.inside = true) : Explained x steps i timeout phase
  | gaveUp {t : α} (asks : timeout = some t) (gaveUp : GaveUp x i t steps) :
      Explained x steps i timeout (.gaveUp t)
  | answered : Explained x steps i timeout (.done x)
  | timedOut {t : α} (asks : timeout = some t) (timedOut : TimedOut x i t steps) :
      Explained x steps i timeout (.done t)

theorem Explained.later {x : α} {steps : List (Step α)} {i : ℕ} {timeout : Option α}
    {phase : Phase α} (h : Explained x steps i timeout phase) (s : Step α) :
    Explained x (steps ++ [s]) i timeout phase := by
  cases h with
  | reading => exact .reading
  | waiting => exact .waiting
  | inside inside => exact .inside inside
  | gaveUp asks gaveUp =>
    cases gaveUp with
    | intro other waits held =>
      rw [List.append_assoc]
      exact .gaveUp asks (.intro other waits held)
  | answered => exact .answered
  | timedOut asks timedOut =>
    cases timedOut with
    | intro gaveUp reads unset =>
      rw [List.append_assoc]
      exact .timedOut asks (.intro gaveUp reads unset)

/-- A thread is explained after a step as it was before, or by the step if it moves. -/
theorem Explained.step {x : α} {steps : List (Step α)} {s : Step α} {i : ℕ}
    {timeout : Option α} {old new : Phase α} (h : Explained x steps i timeout old)
    (here : (after x steps).threads[i]? = some old)
    (there : ((after x steps).step s).threads[i]? = some new) :
    Explained x (steps ++ [s]) i timeout new := by
  have safe := safe_after x steps
  have moves := moves_step (after x steps) s
  have kept : new = old → Explained x (steps ++ [s]) i timeout new := by
    intro same
    rw [same]
    exact h.later s
  generalize hd : (after x steps).step s = d at moves there
  have split {k : ℕ} {p q : Phase α} (came : (after x steps).threads[k]? = some p)
      (moved : (((after x steps).goTo k q).threads)[i]? = some new) :
      new = old ∨ (i = k ∧ old = p ∧ new = q) := by
    rw [goTo_getElem? came] at moved
    by_cases same : i = k
    · subst same
      simp_all
    · simp_all
  cases moves with
  | idle =>
    rw [here] at there
    exact kept (Option.some.inj there).symm
  | spawned =>
    have inside : i < (after x steps).threads.size := (Array.getElem?_eq_some_iff.1 here).1
    rw [push_getElem?, if_neg (by omega), here] at there
    exact kept (Option.some.inj there).symm
  | found came set =>
    obtain same | ⟨rfl, rfl, rfl⟩ := split came there
    · exact kept same
    · rw [(safe.value_eq _ set).1]
      exact .answered
  | missed came =>
    obtain same | ⟨rfl, rfl, rfl⟩ := split came there
    · exact kept same
    · cases h with
      | reading => exact .waiting
      | inside impossible => cases impossible
  | acquired came | foundInside came | started came | finished came =>
    obtain same | ⟨rfl, rfl, rfl⟩ := split came there
    · exact kept same
    · exact .inside rfl
  | released came =>
    obtain same | ⟨rfl, rfl, rfl⟩ := split came there
    · exact kept same
    · rw [(safe.value_eq _ (safe.knows _ _ came)).1]
      exact .answered
  | @gaveUp k j t came held =>
    obtain same | ⟨rfl, rfl, rfl⟩ := split came there
    · exact kept same
    · have other : j ≠ i := by
        rintro rfl
        obtain ⟨phase, atLock, inside⟩ := (safe.holder_iff j).1 held
        rw [came] at atLock
        cases atLock
        cases inside
      cases h with
      | waiting => exact .gaveUp rfl (.intro other came held)
      | inside impossible => cases impossible
  | @reread k t came =>
    obtain same | ⟨rfl, rfl, rfl⟩ := split came there
    · exact kept same
    · cases h with
      | inside impossible => cases impossible
      | gaveUp asks gaveUp =>
        cases value : (after x steps).value with
        | some v =>
          rw [Option.getD_some, (safe.value_eq v value).1]
          exact .answered
        | none => exact .timedOut asks (.intro gaveUp came value)

theorem explained (x : α) (steps : List (Step α)) (i : ℕ) (phase : Phase α)
    (here : (after x steps).threads[i]? = some phase) :
    ∃ timeout, (asked steps)[i]? = some timeout ∧ Explained x steps i timeout phase := by
  induction steps using List.reverseRecOn generalizing phase with
  | nil => simp [after, run] at here
  | append_singleton steps s ih =>
    have asks : asked (steps ++ [s]) = asked steps ++ asked [s] := List.filterMap_append
    rw [after_concat] at here
    cases old : (after x steps).threads[i]? with
    | some before =>
      obtain ⟨timeout, asking, known⟩ := ih before old
      have inside : i < (asked steps).length := (List.getElem?_eq_some_iff.1 asking).1
      refine ⟨timeout, ?_, known.step old here⟩
      rw [asks, List.getElem?_append_left inside, asking]
    | none =>
      -- only a thread that has just come to be was in no phase before
      have size := size_after x steps
      have moves := moves_step (after x steps) s
      generalize (after x steps).step s = d at moves here
      cases moves with
      | idle => exact nomatch old.symm.trans here
      | spawned timeout =>
        rw [push_getElem?] at here
        split at here
        case isTrue new =>
          cases here
          refine ⟨timeout, ?_, .reading⟩
          rw [asks, List.getElem?_append_right (by omega), new, size, Nat.sub_self]
          rfl
        case isFalse => exact nomatch old.symm.trans here
      | found came | missed came | acquired came | foundInside came | started came
      | finished came | released came | gaveUp came | reread came =>
        have moved := (goTo_getElem? came _ i).symm.trans here
        split at moved
        case isTrue same =>
          subst same
          exact nomatch old.symm.trans came
        case isFalse => exact nomatch old.symm.trans moved

theorem answer?_eq_some {d : Delay α} {i : ℕ} {a : α} :
    d.answer? i = some a ↔ d.threads[i]? = some (.done a) := by
  unfold answer?
  constructor
  · intro h
    split at h
    case h_1 here =>
      cases h
      exact here
    case h_2 => cases h
  · intro here
    rw [here]

/-- Who asks without a timeout has the value, and who asks with one has the value or timed out. -/
theorem answer_cases {x : α} {steps : List (Step α)} {i : ℕ} {a : α} {timeout : Option α}
    (asks : (asked steps)[i]? = some timeout) (answered : (after x steps).answer? i = some a) :
    a = x ∨ (timeout = some a ∧ TimedOut x i a steps) := by
  obtain ⟨timeout', asks', known⟩ := explained x steps i _ (answer?_eq_some.1 answered)
  cases asks.symm.trans asks'
  cases known with
  | inside impossible => cases impossible
  | answered => exact .inl rfl
  | timedOut same timedOut => exact .inr ⟨same, timedOut⟩

end Persistent.Delay
